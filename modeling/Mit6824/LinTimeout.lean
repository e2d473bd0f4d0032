/-
# Checking against the clock

`linearizability/linearizability.go`, `CheckOperationsTimeout`: the collecting loop may
give up when its time is over, and then it returns what it has found so far.

* `collect_ne_false`: the loop never turns verdicts into a rejection that none of them
  is, at whatever moment the time is over;
* `accepts_of_orderable`: the search of a part accepts it when its operations can be
  ordered, even when the sorted entries put a return in front of a call of the same
  instant or the other way round;
* `accepts_kvParts`: the parts that `KvModel` makes of a history of the store.
-/
import Mit6824.LinEvents
import Mit6824.TimedHistory

namespace Mit6824.Linearizability

open ObjectHistory Grouping

variable {σ V : Type}

/-! ## The collecting loop -/

section Collect

variable {verdict : ℤ → ℕ → Option Bool} {parts count : ℕ} {timeout : ℤ}

/-- Without a rejected part the loop does not return `false`, neither at the end nor when
the time is over. -/
theorem collect_ne_false (hv : ∀ p, verdict 0 p ≠ some false) (arrivals : List Arrival) :
    collect verdict parts timeout true 0 count arrivals ≠ some false := by
  induction arrivals generalizing count with
  | nil =>
      rw [collect]
      exact Option.some_ne_none false |>.symm
  | cons arrival rest ih =>
      cases arrival with
      | timeout =>
          rw [collect]
          split_ifs
          · simp
          · simp
      | result part =>
          rw [collect]
          rcases hpart : verdict 0 part with _ | _ | _
          · simp
          · exact absurd hpart (hv part)
          · simp only [Option.bind_eq_bind, Option.bind_some, Bool.true_and, Bool.not_true,
              Bool.false_eq_true, if_false]
            split_ifs
            · simp
            · exact ih

end Collect

section Timeout

variable [BEq σ] [Inhabited V] {model : UserModel σ V} {so : Sorting V}
  {history : List (Operation V)} {parts : List (List (Entry V))}

omit [BEq σ] in
/-- The search of an accepted part does not say `false`, however short it is cut. -/
theorem partVerdict_ne_false {model : Model σ V} (hacc : ∀ part ∈ parts, Accepts model part)
    (fuel p : ℕ) : partVerdict model parts fuel 0 p ≠ some false := by
  intro hfalse
  obtain ⟨entries, hp, -⟩ := Option.bind_eq_some_iff.mp hfalse
  obtain ⟨hlt, hget⟩ := List.getElem?_eq_some_iff.mp hp
  obtain ⟨n, hn⟩ := hacc entries (List.mem_of_getElem? hp)
  -- more time would confirm the verdict
  have hmore := partVerdict_mono (le_max_left fuel n) hfalse
  rw [partVerdict_eq_search hlt, hget, hn _ (le_max_right fuel n)] at hmore
  cases hmore

omit [BEq σ] in
/-- There is enough time for all searches. -/
theorem exists_fuel {model : Model σ V} (hacc : ∀ part ∈ parts, Accepts model part) :
    ∃ n, ∀ fuel ≥ n, ∀ p < parts.length, partVerdict model parts fuel 0 p = some true := by
  have hall : ∀ p < parts.length, ∃ n, ∀ fuel ≥ n,
      partVerdict model parts fuel 0 p = some true := by
    intro p hp
    obtain ⟨n, hn⟩ := hacc parts[p] (List.getElem_mem hp)
    exact ⟨n, fun fuel hle => by rw [partVerdict_eq_search hp, hn fuel hle]⟩
  choose! n hn using hall
  refine ⟨(Finset.range parts.length).sup n, ?_⟩
  intro fuel hle p hp
  exact hn p hp fuel (le_trans (Finset.le_sup (Finset.mem_range.mpr hp)) hle)

/-- When the search accepts every part, `CheckOperationsTimeout` never returns `false`, and it
returns `true` once all verdicts have arrived. -/
theorem checkOperationsTimeout_of_accepts
    (hacc : ∀ part ∈ operationParts model so history, Accepts (fillDefault model).toModel part)
    (timeout : ℤ) :
    (∀ arrivals fuel, checkOperationsTimeout model so history timeout arrivals fuel ≠ some false) ∧
      (operationParts model so history ≠ [] → ∃ n, ∀ fuel ≥ n,
        ∀ (order : List ℕ) (late : List Arrival),
        order.Perm (List.range (operationParts model so history).length) →
          checkOperationsTimeout model so history timeout (order.map .result ++ late) fuel =
            some true) := by
  constructor
  · intro arrivals fuel
    rw [checkOperationsTimeout_eq_collect]
    exact collect_ne_false (partVerdict_ne_false hacc fuel) arrivals
  · intro hne
    obtain ⟨n, hn⟩ := exists_fuel hacc
    refine ⟨n, ?_⟩
    intro fuel hle order late hperm
    have hlen : order.length = (operationParts model so history).length := by
      rw [hperm.length_eq, List.length_range]
    rw [checkOperationsTimeout_eq_collect]
    rw [collect_eq_all (v := fun _ => true), List.all_eq_true.mpr fun _ _ => rfl]
    · intro p hp
      exact hn fuel hle p (List.mem_range.mp (hperm.mem_iff.mp hp))
    · rw [hlen, Nat.zero_add]
    · have hpos := List.length_pos_of_ne_nil hne
      exact List.ne_nil_of_length_pos (by omega)

end Timeout

/-! ## The search of a part -/

section Search

variable [Inhabited V] {so : Sorting V} {history : List (Operation V)}

/-- The search accepts what can be ordered even if a return and a call at the same instant are
taken to be in this order. -/
theorem accepts_of_orderable [BEq σ] {model : UserModel σ V} (so : Sorting V)
    (hcong : (fillDefault model).Congruent) (hlt : ∀ op ∈ history, op.call < op.ret)
    (h : Orderable (fillDefault model).spec Operation.io (fun a b => a.ret ≤ b.call) history
      (fillDefault model).init) :
    Accepts (fillDefault model).toModel (makeEntries so history) := by
  obtain ⟨ok, n, hn, hok⟩ := exists_verdict so hcong hlt
  rw [hok.mpr (arrangeable_makeEntries_of_le h)] at hn
  exact ⟨n, hn⟩

end Search

/-- A history with operations has a part. -/
theorem operationParts_kvModel_ne_nil {ord : RangeOrder String} {so : Sorting KvValue}
    {history : List (Operation KvValue)} (hne : history ≠ []) :
    operationParts (kvModel ord) so history ≠ [] := by
  intro hnil
  have hperm := flatten_kvPartition_perm ord history
  have hparts : kvPartition ord history = [] := List.map_eq_nil_iff.mp hnil
  rw [hparts, List.flatten_nil] at hperm
  exact hne hperm.symm.eq_nil

/-- `KvModel` accepts every part of a history that can be ordered as operations on the store. -/
theorem accepts_kvParts (ord : RangeOrder String) (so : Sorting KvValue)
    {history : List (Operation KvValue)} (hlt : ∀ op ∈ history, op.call < op.ret)
    (h : Orderable kvMapSpec Operation.io (fun a b => a.ret ≤ b.call) history kvMapSpec.init) :
    ∀ part ∈ operationParts (kvModel ord) so history,
      Accepts (fillDefault (kvModel ord)).toModel part := by
  obtain ⟨keys, -, -, hparts⟩ := kvPartition_eq ord history
  intro part hpart
  obtain ⟨subhistory, hsub, rfl⟩ := List.mem_map.mp hpart
  rw [show (fillDefault (kvModel ord)).partition history = _ from hparts] at hsub
  obtain ⟨k, -, rfl⟩ := List.mem_map.mp hsub
  refine accepts_of_orderable so (kvModel_congruent ord) ?_ ?_
  · intro op hop
    exact hlt op (List.mem_of_mem_filter hop)
  · rw [kvMapSpec_eq_keyed ord] at h
    exact h.of_keyed k

end Mit6824.Linearizability
